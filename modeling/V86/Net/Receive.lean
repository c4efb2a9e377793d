import V86.Net.Tcp

/-!
# The guest's stream

A guest that follows the protocol sends its stream in segments that start anywhere in what it has
sent, and a FIN at the end. What the connection emits and acknowledges is the stream, as long as
nothing of it comes where the connection does not look: with a FIN, behind the end of the 32-bit
numbers, in a segment that also repeats bytes, or in one that lets a delayed FIN go.
-/

namespace V86.Net

open List

/-- The bytes that were passed to the handler of `data`. -/
def received (outputs : List Output) : List Byte :=
  outputs.flatMap fun
    | .event (.data bytes) => bytes
    | _ => []

@[simp] theorem received_append (os os' : List Output) :
    received (os ++ os') = received os ++ received os' := flatMap_append

/-- All segments carry this acknowledgement number. -/
def Acks (n : Nat) (outputs : List Output) : Prop := ∀ s, .segment s ∈ outputs → s.ackn = n

theorem Acks.append {n : Nat} {os os' : List Output} (h : Acks n os) (h' : Acks n os') :
    Acks n (os ++ os') := fun s hs => (List.mem_append.1 hs).elim (h s) (h' s)

theorem acks_segment {n : Nat} {s : Segment} (h : s.ackn = n) : Acks n [.segment s] := by
  intro t ht
  cases List.mem_singleton.1 ht
  exact h

theorem acks_event (n : Nat) (e : Event) : Acks n [.event e] := by
  intro t ht
  cases List.mem_singleton.1 ht

/-! ## The guest -/

/-- What the guest has sent of its stream. -/
structure Guest where
  isn : BitVec 32
  stream : List Byte
  fin : Bool

/-- The sequence number behind all that was sent, without bound. -/
def Guest.next (g : Guest) : Nat := g.isn.toNat + 1 + g.stream.length + g.fin.toNat

/-- A step of the guest or of the host. A segment starts at position `start` of the stream; a probe
is a keep-alive. Both have any acknowledgement number, and meet the handlers' calls `reactions`. -/
inductive Action
  | segment (start : Nat) (data : List Byte) (fin : Bool) (ackn : BitVec 32) (winsize : BitVec 16)
    (reactions : List HostOp)
  | probe (garbage : List Byte) (ackn : BitVec 32) (winsize : BitVec 16) (reactions : List HostOp)
  | host (op : HostOp)

namespace Guest

variable (g : Guest)

/-- The segment brings bytes that were not sent before. -/
def Brings (start : Nat) (data : List Byte) : Prop := g.stream.length < start + data.length

instance (start : Nat) (data : List Byte) : Decidable (g.Brings start data) :=
  inferInstanceAs (Decidable (_ < _))

/-- A segment repeats bytes of the stream, or continues the stream with new ones unless the FIN was
sent. A FIN is at the end of the stream. -/
def Allows : Action → Prop
  | .segment start data fin _ _ _ => start ≤ g.stream.length ∧
    (data <+: g.stream.drop start ∨ g.stream.drop start <+: data ∧ g.fin = false) ∧
    (fin = true → g.stream.length ≤ start + data.length)
  | .probe garbage _ _ _ => garbage.length ≤ 1
  | .host _ => True

/-- What was sent after a step. -/
def after : Action → Guest
  | .segment start data fin _ _ _ =>
    { g with
      stream := if g.Brings start data then g.stream.take start ++ data else g.stream
      fin := g.fin || fin }
  | _ => g

/-- The segment as it is sent. -/
def packet (offset : Nat) (data : List Byte) (fin : Bool) (ackn : BitVec 32)
    (winsize : BitVec 16) : Packet where
  seq := BitVec.ofNat 32 offset
  ackn := ackn
  winsize := winsize
  fin := fin
  syn := false
  rst := false
  ack := true
  data := data

end Guest

structure World where
  guest : Guest
  conn : Conn

/-- A segment reaches the connection as long as the adapter knows it. -/
def Conn.deliver (c : Conn) (p : Packet) (reactions : List HostOp) : Conn :=
  if c.registered then c.process p reactions else c

def World.step (w : World) (a : Action) : World where
  guest := w.guest.after a
  conn :=
    match a with
    | .segment start data fin ackn winsize reactions =>
      w.conn.deliver (Guest.packet (w.guest.isn.toNat + 1 + start) data fin ackn winsize) reactions
    | .probe garbage ackn winsize reactions =>
      w.conn.deliver (Guest.packet (w.guest.next - 1) garbage false ackn winsize) reactions
    | .host op => w.conn.perform op

/-- After a step, all that the guest has sent was emitted, and what was sent to the guest in the
step acknowledges it. -/
def World.Delivers (w : World) (a : Action) : Prop :=
  received (w.step a).conn.outputs = (w.step a).guest.stream ∧
    ∀ s, .segment s ∈ (w.step a).conn.outputs.drop w.conn.outputs.length →
      BitVec.ofNat 32 s.ackn = BitVec.ofNat 32 (w.guest.isn.toNat + 1 +
        (received (w.step a).conn.outputs).length + (w.step a).guest.fin.toNat)

/-! ## Where the connection does not look -/

namespace Conn

variable (c : Conn)

/-- The acknowledgement number is below the last one: the connection is reset. -/
def Resets (ackn : BitVec 32) : Prop := ∃ last, c.lastReceivedAckn = some last ∧ ackn.toNat < last

/-- All bytes are acknowledged now, and a delayed FIN is sent. -/
def Completes (ackn : BitVec 32) : Prop :=
  ∃ last, c.lastReceivedAckn = some last ∧ last < ackn.toNat ∧ c.Finishes (ackn.toNat - last)

/-- The connection looks at the data and the FIN of a segment. -/
def Reads (ackn : BitVec 32) : Prop :=
  c.registered = true ∧ c.state ≠ .closed ∧ c.state ≠ .closing ∧ c.state ≠ .lastAck ∧
    ¬c.Resets ackn ∧ ¬c.Completes ackn

end Conn

/-- New bytes come in a segment of their own, start at a sequence number below `2^32` and do not
let a delayed FIN go; nor does the FIN, and it is not repeated where the connection would read it.
Until then no acknowledgement number is below the last one. -/
def World.Clean (w : World) : Action → Prop
  | .segment start data fin ackn _ _ =>
    (w.guest.fin = false → ¬w.conn.Resets ackn) ∧
    (w.guest.Brings start data → start = w.guest.stream.length ∧
      w.guest.isn.toNat + 1 + start < 2 ^ 32 ∧ fin = false ∧ ¬w.conn.Completes ackn) ∧
    (fin = true → if w.guest.fin then ¬w.conn.Reads ackn else ¬w.conn.Completes ackn)
  | .probe _ ackn _ _ => w.guest.fin = false → ¬w.conn.Resets ackn
  | .host _ => True

/-! ## Calls of the host -/

namespace Conn

variable {c d : Conn}

/-- The connection before the FIN of the guest. -/
structure Alive (c : Conn) : Prop where
  registered : c.registered = true
  state : c.state = .established ∨ c.state = .finWait1 ∨ c.state = .finWait2
  active : c.inActiveClose = false → c.state = .established
  delayed : c.delayedSendFin = true → c.inActiveClose = true ∧ c.delayedState = .finWait1

/-- The segments sent carry the acknowledgement number `n`, as all later ones will, and `data` was
emitted. -/
structure Yields (c d : Conn) (n : Nat) (data : List Byte) : Prop where
  ack : d.ack = n
  outputs : ∃ os, d.outputs = c.outputs ++ os ∧ Acks n os ∧ received os = data

/-- Nothing is acknowledged, and no data is emitted. -/
abbrev Answers (c d : Conn) : Prop := Yields c d c.ack []

/-- What a call leaves. -/
structure Calls (c d : Conn) : Prop where
  answers : Answers c d
  alive : c.Alive → d.Alive

variable {e : Conn} {n : Nat} {data : List Byte} {s : Segment}

theorem Yields.trans (h : Yields c d n data) (h' : Answers d e) : Yields c e n data := by
  obtain ⟨rfl, os, hos, hacks, hreceived⟩ := h
  obtain ⟨hack, os', hos', hacks', hreceived'⟩ := h'
  refine ⟨hack, os ++ os', ?_, hacks.append hacks', ?_⟩
  · rw [hos', hos, append_assoc]
  · rw [received_append, hreceived, hreceived', append_nil]

theorem Yields.of_outputs (h : Yields d e n data)
    (houtputs : d.outputs = c.outputs) : Yields c e n data := by
  obtain ⟨hack, os, hos, hrest⟩ := h
  exact ⟨hack, os, by rw [hos, houtputs], hrest⟩

/-- Nothing is said. -/
theorem Answers.of_eq (hack : d.ack = c.ack) (houtputs : d.outputs = c.outputs) : Answers c d :=
  ⟨hack, [], houtputs.trans (append_nil _).symm, nofun, rfl⟩

theorem Answers.send (h : s.ackn = c.ack) : Answers c (c.send s) :=
  ⟨rfl, [.segment s], rfl, acks_segment h, rfl⟩

/-- A segment that was made before. -/
theorem Answers.send_after (h : Answers c d) (hs : s.ackn = c.ack) : Answers c (d.send s) :=
  h.trans (.send (hs.trans h.ack.symm))

theorem Calls.refl (c : Conn) : Calls c c := ⟨.of_eq rfl rfl, id⟩

theorem Calls.trans (h : Calls c d) (h' : Calls d e) : Calls c e :=
  ⟨h.answers.trans h'.answers, h'.alive ∘ h.alive⟩

/-- Sending a segment. -/
theorem Calls.send (h : s.ackn = c.ack) : Calls c (c.send s) :=
  ⟨.send h, fun ha => ⟨ha.registered, ha.state, ha.active, ha.delayed⟩⟩

theorem calls_pump (c : Conn) : Calls c c.pump := by
  unfold pump
  split
  · exact ⟨⟨rfl, [.segment _], rfl, acks_segment rfl, rfl⟩, fun ha => ⟨ha.registered, ha.state,
      ha.active, ha.delayed⟩⟩
  · exact .refl c

theorem calls_enqueue {dataArray : List (List Byte)} (h : c.enqueue dataArray = some d) :
    Calls c d := by
  induction dataArray generalizing c with
  | nil => exact Option.some.inj h ▸ .refl c
  | cons data dataArray ih =>
    unfold enqueue at h
    split at h
    case h_1 buffer _ =>
      have hstored : Calls c { c with sendBuffer := buffer, written := c.written ++ data } :=
        ⟨.of_eq rfl rfl, fun ha => ⟨ha.registered, ha.state, ha.active, ha.delayed⟩⟩
      exact hstored.trans (ih h)
    · cases h

theorem calls_writev (c : Conn) (dataArray : List (List Byte)) : Calls c (c.writev dataArray) := by
  unfold writev
  split
  · exact calls_pump c
  · split
    case h_1 d henqueue => exact (calls_enqueue henqueue).trans (calls_pump d)
    · exact .refl c

theorem ack_release (c : Conn) : c.release.ack = c.ack := by
  unfold release
  split <;> rfl

theorem outputs_release (c : Conn) : c.release.outputs = c.outputs := by
  unfold release
  split <;> rfl

/-- A change of the state of the connection. -/
theorem Calls.of_state (hack : d.ack = c.ack) (houtputs : d.outputs = c.outputs)
    (halive : c.Alive → d.Alive) : Calls c d :=
  ⟨.of_eq hack houtputs, halive⟩

theorem closeState_of_alive (h : c.Alive) (hactive : c.inActiveClose = false) :
    c.closeState = some .finWait1 := by
  rw [closeState, h.active hactive]

theorem calls_close (c : Conn) : Calls c c.close := by
  unfold close
  split
  · exact calls_pump c
  case isFalse hactive =>
    have hactive := Bool.eq_false_iff.2 hactive
    dsimp only
    cases hnext : closeState { c with inActiveClose := true } with
    | none =>
      refine .of_state (ack_release _) (outputs_release _) fun ha => ?_
      have hclose := closeState_of_alive ha hactive
      rw [closeState] at hclose hnext
      rw [hclose] at hnext
      cases hnext
    | some nextState =>
      have hfin : c.Alive → nextState = .finWait1 := fun ha => by
        have hclose := closeState_of_alive ha hactive
        rw [closeState] at hclose hnext
        rw [hclose] at hnext
        exact (Option.some.inj hnext).symm
      dsimp only
      split
      · refine (Calls.of_state ?_ ?_ fun ha => ?_).trans (calls_pump _)
        · rfl
        · rfl
        · exact ⟨ha.registered, ha.state, nofun, fun _ => ⟨rfl, hfin ha⟩⟩
      · refine (Calls.of_state ?_ ?_ fun ha => ?_).trans ((Calls.send ?_).trans (calls_pump _))
        · rfl
        · rfl
        · exact ⟨ha.registered, .inr (.inl (hfin ha)), nofun, fun hd => ⟨rfl, (ha.delayed hd).2⟩⟩
        · rfl

theorem calls_perform (c : Conn) (op : HostOp) : Calls c (c.perform op) := by
  cases op with
  | write data => exact calls_writev c [data]
  | writev dataArray => exact calls_writev c dataArray
  | close => exact calls_close c

theorem calls_foldl (ops : List HostOp) (c : Conn) : Calls c (ops.foldl perform c) := by
  induction ops generalizing c with
  | nil => exact .refl c
  | cons op ops ih => exact (calls_perform c op).trans (ih _)

/-- An event that carries no data, and the calls of its handler. -/
theorem calls_emitTo {e : Event} (he : received [.event e] = []) (ops : List HostOp) :
    Calls c (c.emitTo e ops) := by
  have hemit : Calls c (c.emit e) := ⟨⟨rfl, [.event e], rfl, acks_event _ e, he⟩,
    fun ha => ⟨ha.registered, ha.state, ha.active, ha.delayed⟩⟩
  exact hemit.trans (calls_foldl ops _)

/-! ## Segments -/

/-- A segment of an open connection. -/
structure Plain (p : Packet) : Prop where
  syn : p.syn = false
  rst : p.rst = false
  ack : p.ack = true

variable {p : Packet} {reactions : List HostOp}

theorem calls_acknowledgedState (c : Conn) (p : Packet) :
    Calls c { c with state := c.acknowledgedState p } := by
  refine .of_state rfl rfl fun ha => ⟨ha.registered, ?_, fun hactive => ?_, ha.delayed⟩
  · unfold acknowledgedState
    rcases ha.state with h | h | h <;> rw [h] <;> cases p.ack <;> cases p.fin <;> simp
  · have hstate := ha.active hactive
    unfold acknowledgedState
    rw [hstate]
    split <;> rfl

theorem calls_acknowledge (c : Conn) (ackn nAck : Nat) : Calls c (c.acknowledge ackn nAck) :=
  .of_state rfl rfl fun ha => ⟨ha.registered, ha.state, ha.active, ha.delayed⟩

theorem calls_finish (c : Conn) (ackn nAck : Nat) (h : c.delayedSendFin = true) :
    Calls c (c.finish ackn nAck) := by
  have hstate : Calls c
      { c.acknowledge ackn nAck with delayedSendFin := false, state := c.delayedState } := by
    refine .of_state rfl rfl fun ha => ⟨ha.registered, ?_, fun hactive => ?_, fun hd => ?_⟩
    · exact .inr (.inl (ha.delayed h).2)
    · cases hactive.symm.trans (ha.delayed h).1
    · cases hd
  exact hstate.trans (.send rfl)

theorem answers_reset (c : Conn) (p : Packet) (reactions : List HostOp) :
    Answers c (c.reset p reactions) := by
  have hanswers : Answers c ((c.send { c.packetReply p with rst := true }).emitTo .close reactions) :=
    (Answers.send rfl).trans (calls_emitTo rfl reactions).answers
  exact hanswers.trans (.of_eq (ack_release _) (outputs_release _))

/-- How far a segment gets with its acknowledgement number. -/
theorem processAckn_cases (c : Conn) (p : Packet) (reactions : List HostOp) :
    (∃ d, c.processAckn p reactions = .done d ∧ Answers c d ∧
      (¬c.Resets p.ackn → c.Alive → d.Alive) ∧ (c.Resets p.ackn ∨ c.Completes p.ackn)) ∨
    ∃ d, c.processAckn p reactions = .goOn d ∧ d.ack = c.ack ∧ d.outputs = c.outputs ∧
      (c.Alive → d.Alive) ∧ ¬c.Resets p.ackn ∧ ¬c.Completes p.ackn := by
  cases hlast : c.lastReceivedAckn with
  | none =>
    refine .inr ⟨_, processAckn_none hlast, rfl, rfl,
      fun ha => ⟨ha.registered, ha.state, ha.active, ha.delayed⟩, ?_, ?_⟩
    · rintro ⟨last, h, _⟩
      cases hlast.symm.trans h
    · rintro ⟨last, h, _⟩
      cases hlast.symm.trans h
  | some last =>
    have hunique : ∀ {last'}, c.lastReceivedAckn = some last' → last' = last := fun h =>
      Option.some.inj (h.symm.trans hlast)
    rcases processAckn_some hlast p reactions with
      ⟨habove, hfin, heq⟩ | ⟨habove, hfin, heq⟩ | ⟨hbelow, heq⟩ | ⟨hsame, heq⟩
    · have hcalls := calls_finish c p.ackn.toNat (p.ackn.toNat - last) hfin.1
      exact .inl ⟨_, heq, hcalls.answers, fun _ => hcalls.alive, .inr ⟨last, hlast, habove, hfin⟩⟩
    · refine .inr ⟨_, heq, rfl, rfl, (calls_acknowledge c _ _).alive, ?_, ?_⟩
      · rintro ⟨last', h, hlt⟩
        rw [hunique h] at hlt
        omega
      · rintro ⟨last', h, _, hf⟩
        exact hfin (hunique h ▸ hf)
    · have hresets : c.Resets p.ackn := ⟨last, hlast, hbelow⟩
      exact .inl ⟨_, heq, answers_reset c p reactions, fun h => absurd hresets h, .inl hresets⟩
    · refine .inr ⟨_, heq, rfl, rfl, id, ?_, ?_⟩
      · rintro ⟨last', h, hlt⟩
        rw [hunique h] at hlt
        omega
      · rintro ⟨last', h, hlt, _⟩
        rw [hunique h] at hlt
        omega

/-- A segment that the connection does not read is at most answered. -/
theorem process_unread (hp : Plain p) (hregistered : c.registered = true)
    (h : ¬c.Reads p.ackn) : Answers c (c.process p reactions) ∧
      (¬c.Resets p.ackn → c.Alive → (c.process p reactions).Alive) := by
  have hdead : ∀ {d : Conn}, d.ack = c.ack → d.outputs = c.outputs →
      c.state = .closing ∨ c.state = .lastAck →
      Answers c d ∧ (¬c.Resets p.ackn → c.Alive → d.Alive) := fun hack houtputs hstate =>
    ⟨.of_eq hack houtputs, fun _ ha => by
      rcases ha.state with hs | hs | hs <;> rw [hs] at hstate <;> rcases hstate with hs' | hs' <;>
        cases hs'⟩
  unfold process
  split
  · have hsend : Calls c (c.send { c.packetReply p with rst := true }) := .send rfl
    exact ⟨hsend.answers, fun _ => hsend.alive⟩
  case isFalse hclosed =>
    rw [hp.rst, hp.syn, hp.ack, if_neg (by decide), if_neg (by decide)]
    split
    case isTrue hstate => exact hdead (ack_release c) (outputs_release c) hstate.2
    case isFalse hstate =>
      have hstate' := calls_acknowledgedState c p
      rcases processAckn_cases { c with state := c.acknowledgedState p } p reactions with
        ⟨d, heq, hanswers, halive, _⟩ | ⟨d, heq, _, _, _, hresets, hcompletes⟩
      · rw [heq]
        exact ⟨hstate'.answers.trans hanswers, fun hr ha => halive hr (hstate'.alive ha)⟩
      · exact absurd ⟨hregistered, hclosed, fun hs => hstate ⟨rfl, .inl hs⟩,
          fun hs => hstate ⟨rfl, .inr hs⟩, hresets, hcompletes⟩ h

/-- A segment that the connection reads. -/
theorem process_of_reads (hp : Plain p) (h : c.Reads p.ackn) (reactions : List HostOp) :
    ∃ d : Conn, d.ack = c.ack ∧ d.outputs = c.outputs ∧ (c.Alive → d.Alive) ∧
      c.process p reactions =
        (if p.fin then d.processFin p reactions else d.processData p reactions).pump := by
  obtain ⟨_, hclosed, hclosing, hlastAck, hresets, hcompletes⟩ := h
  unfold process
  rw [if_neg hclosed, hp.rst, hp.syn, hp.ack, if_neg (by decide), if_neg (by decide),
    if_neg fun hs => hs.2.elim hclosing hlastAck]
  rcases processAckn_cases { c with state := c.acknowledgedState p } p reactions with
    ⟨d, _, _, _, hr | hf⟩ | ⟨d, heq, hack, houtputs, halive, -, -⟩
  · exact absurd hr hresets
  · exact absurd hf hcompletes
  · rw [heq]
    exact ⟨d, hack, houtputs, halive ∘ (calls_acknowledgedState c p).alive, rfl⟩

/-- Data that is not expected, or none, is at most answered. -/
theorem calls_processData (c : Conn) (reactions : List HostOp)
    (h : c.ack ≠ p.seq.toNat ∨ p.data = []) : Calls c (c.processData p reactions) := by
  unfold processData
  split
  · exact .send rfl
  case isFalse hseq =>
    rw [h.resolve_left hseq, if_neg fun hd => hd.2 rfl]
    exact .refl c

/-- Expected data is acknowledged and emitted. -/
theorem yields_processData (hp : Plain p) (hseq : c.ack = p.seq.toNat) (hdata : p.data ≠ [])
    (reactions : List HostOp) :
    Yields c (c.processData p reactions) (c.ack + p.data.length) p.data ∧
      (c.Alive → (c.processData p reactions).Alive) := by
  unfold processData
  rw [if_neg fun h => h hseq, if_pos ⟨hp.ack, fun h => hdata (List.length_eq_zero_iff.1 h)⟩]
  dsimp only
  let taken : Conn := { c with ack := c.ack + p.data.length }
  let emitted : Conn := (taken.send taken.ipv4Reply).emit (.data p.data)
  have htaken : Yields c emitted (c.ack + p.data.length) p.data := by
    refine ⟨rfl, [.segment taken.ipv4Reply, .event (.data p.data)], ?_, ?_, ?_⟩
    · exact append_assoc ..
    · exact (acks_segment rfl).append (acks_event _ _)
    · simp [received]
  have hcalls := calls_foldl reactions emitted
  exact ⟨htaken.trans hcalls.answers,
    fun ha => hcalls.alive ⟨ha.registered, ha.state, ha.active, ha.delayed⟩⟩

theorem answers_release (c : Conn) : Answers c c.release := .of_eq (ack_release c) (outputs_release c)

/-- A FIN is acknowledged. -/
theorem yields_processFin (c : Conn) (p : Packet) (reactions : List HostOp) :
    Yields c (c.processFin p reactions) (c.ack + 1) [] := by
  have hback : ∀ {d : Conn}, Answers { c with ack := c.ack + 1 } d → Yields c d (c.ack + 1) [] :=
    fun h => ⟨h.ack, h.outputs⟩
  refine hback ?_
  unfold processFin
  dsimp only
  split
  · refine Answers.send_after ?_ rfl
    have hstate : Answers { c with ack := c.ack + 1 }
        { c with ack := c.ack + 1, state := .closeWait } := .of_eq rfl rfl
    exact hstate.trans (calls_emitTo rfl reactions).answers
  · refine Answers.send_after ?_ rfl
    split
    · exact answers_release _
    · exact .of_eq rfl rfl
  · exact (answers_release _).send_after rfl
  · refine Answers.send_after ?_ rfl
    exact (answers_release _).trans (calls_emitTo (e := .close) rfl reactions).answers

end Conn

/-! ## Runs -/

open Conn

/-- The connection has emitted and acknowledged what the guest has sent. -/
structure World.Inv (w : World) : Prop where
  ack : w.conn.ack = w.guest.next
  received : received w.conn.outputs = w.guest.stream
  alive : w.guest.fin = false → w.conn.Alive

/-- The wire number of a position is at most its number without bound. -/
theorem toNat_ofNat_le (n : Nat) : (BitVec.ofNat 32 n).toNat ≤ n := by
  rw [BitVec.toNat_ofNat]
  exact Nat.mod_le _ _

theorem plain_packet (offset : Nat) (data : List Byte) (fin : Bool) (ackn : BitVec 32)
    (winsize : BitVec 16) : Plain (Guest.packet offset data fin ackn winsize) :=
  ⟨rfl, rfl, rfl⟩

variable {w : World} {a : Action} {c : Conn} {ackn : BitVec 32} {winsize : BitVec 16}
  {reactions : List HostOp} {data : List Byte}

/-- What a step yields is what the guest sent. -/
theorem World.delivers_of_yields (data : List Byte) (h : w.Inv)
    (hyields : Yields w.conn (w.step a).conn (w.step a).guest.next data)
    (hisn : (w.step a).guest.isn = w.guest.isn)
    (hstream : (w.step a).guest.stream = w.guest.stream ++ data)
    (halive : (w.step a).guest.fin = false → (w.step a).conn.Alive) :
    (w.step a).Inv ∧ w.Delivers a := by
  obtain ⟨hack, os, hos, hacks, hdata⟩ := hyields
  have hreceived : V86.Net.received (w.step a).conn.outputs = (w.step a).guest.stream := by
    rw [hos, received_append, h.received, hdata, hstream]
  refine ⟨⟨hack, hreceived, halive⟩, hreceived, fun s hs => ?_⟩
  rw [hos, drop_left] at hs
  rw [hacks s hs, hreceived, Guest.next, hisn]

/-- A segment that brings nothing new. -/
theorem World.inv_old (h : w.Inv) (hguest : (w.step a).guest = w.guest)
    (hanswers : Answers w.conn (w.step a).conn)
    (halive : w.guest.fin = false → (w.step a).conn.Alive) : (w.step a).Inv ∧ w.Delivers a := by
  have hyields : Yields w.conn (w.step a).conn (w.step a).guest.next [] := by
    rw [hguest, ← h.ack]
    exact hanswers
  refine World.delivers_of_yields [] h hyields ?_ ?_ ?_
  · rw [hguest]
  · rw [hguest, append_nil]
  · rw [hguest]
    exact halive

/-- A segment that the connection only answers. -/
theorem deliver_old {p : Packet} (hp : Plain p) (reactions : List HostOp)
    (h : c.Reads p.ackn → p.fin = false ∧ (c.ack ≠ p.seq.toNat ∨ p.data = [])) :
    Answers c (c.deliver p reactions) ∧
      (¬c.Resets p.ackn → c.Alive → (c.deliver p reactions).Alive) := by
  unfold Conn.deliver
  split
  case isFalse => exact ⟨(Calls.refl c).answers, fun _ ha => ha⟩
  case isTrue hregistered =>
    by_cases hreads : c.Reads p.ackn
    · obtain ⟨hfin, hseq⟩ := h hreads
      obtain ⟨d, hack, houtputs, halive, heq⟩ := process_of_reads hp hreads reactions
      have hd : Calls c d := ⟨.of_eq hack houtputs, halive⟩
      have hcalls : Calls c (c.process p reactions) := by
        rw [heq, hfin, if_neg (by decide)]
        exact hd.trans ((calls_processData d reactions (hack ▸ hseq)).trans (calls_pump _))
      exact ⟨hcalls.answers, fun _ => hcalls.alive⟩
    · exact process_unread hp hregistered hreads

/-- The connection reads what it does not reset, before the guest's FIN. -/
theorem Conn.Alive.reads (h : c.Alive) (hr : ¬c.Resets ackn)
    (hc : ¬c.Completes ackn) : c.Reads ackn := by
  refine ⟨h.registered, ?_, ?_, ?_, hr, hc⟩ <;>
    rcases h.state with hs | hs | hs <;> rw [hs] <;> decide

theorem Guest.next_pos (g : Guest) : 0 < g.next := by
  unfold Guest.next
  omega

theorem World.inv_probe (h : w.Inv) {garbage : List Byte}
    (hc : w.Clean (.probe garbage ackn winsize reactions)) :
    (w.step (.probe garbage ackn winsize reactions)).Inv ∧
      w.Delivers (.probe garbage ackn winsize reactions) := by
  have hold := deliver_old (c := w.conn)
    (plain_packet (w.guest.next - 1) garbage false ackn winsize) reactions fun _ => by
      refine ⟨rfl, .inl fun hseq => ?_⟩
      have hle := toNat_ofNat_le (w.guest.next - 1)
      have hpos := w.guest.next_pos
      rw [h.ack] at hseq
      have hseq : w.guest.next = (BitVec.ofNat 32 (w.guest.next - 1)).toNat := hseq
      omega
  exact World.inv_old h rfl hold.1 fun hfin => hold.2 (hc hfin) (h.alive hfin)

/-- The stream goes on with the bytes of a segment that starts at its end. -/
theorem World.inv_data (h : w.Inv) (hdata : data ≠ []) (hfin : w.guest.fin = false)
    (hreads : w.conn.Reads ackn) (hwrap : w.guest.isn.toNat + 1 + w.guest.stream.length < 2 ^ 32) :
    (w.step (.segment w.guest.stream.length data false ackn winsize reactions)).Inv ∧
      w.Delivers (.segment w.guest.stream.length data false ackn winsize reactions) := by
  have hp := plain_packet (w.guest.isn.toNat + 1 + w.guest.stream.length) data false ackn winsize
  obtain ⟨d, hack, houtputs, halive, heq⟩ := process_of_reads hp hreads reactions
  have hbrings : w.guest.Brings w.guest.stream.length data := by
    have := List.length_pos_iff.2 hdata
    unfold Guest.Brings
    omega
  have hnext : w.conn.ack = w.guest.isn.toNat + 1 + w.guest.stream.length := by
    rw [h.ack, Guest.next, hfin]
    rfl
  have hseq : d.ack = (BitVec.ofNat 32 (w.guest.isn.toNat + 1 + w.guest.stream.length)).toNat := by
    rw [hack, hnext, BitVec.toNat_ofNat, Nat.mod_eq_of_lt hwrap]
  obtain ⟨hyields, hdalive⟩ := yields_processData hp hseq hdata reactions
  have hconn : (w.step (.segment w.guest.stream.length data false ackn winsize reactions)).conn =
      (d.processData (Guest.packet (w.guest.isn.toNat + 1 + w.guest.stream.length) data false ackn
        winsize) reactions).pump := (if_pos hreads.1).trans heq
  have hguest : (w.step (.segment w.guest.stream.length data false ackn winsize reactions)).guest =
      ⟨w.guest.isn, w.guest.stream ++ data, w.guest.fin⟩ := by
    change Guest.mk _ (if _ then _ else _) (w.guest.fin || false) = _
    rw [if_pos hbrings, take_length, Bool.or_false]
  have hn : Guest.next ⟨w.guest.isn, w.guest.stream ++ data, w.guest.fin⟩ =
      d.ack + data.length := by
    rw [hack, h.ack, Guest.next, Guest.next, length_append]
    dsimp only
    omega
  refine World.delivers_of_yields data h ?_ ?_ ?_ ?_
  · rw [hguest, hn, hconn]
    exact (hyields.trans (calls_pump _).answers).of_outputs houtputs
  · rw [hguest]
  · rw [hguest]
  · intro _
    rw [hconn]
    exact (calls_pump _).alive (hdalive (halive (h.alive hfin)))

/-- The FIN, with no new bytes. -/
theorem World.inv_fin (h : w.Inv) {start : Nat} (hfin : w.guest.fin = false)
    (hreads : w.conn.Reads ackn) (hold : ¬w.guest.Brings start data) :
    (w.step (.segment start data true ackn winsize reactions)).Inv ∧
      w.Delivers (.segment start data true ackn winsize reactions) := by
  have hp := plain_packet (w.guest.isn.toNat + 1 + start) data true ackn winsize
  obtain ⟨d, hack, houtputs, -, heq⟩ := process_of_reads hp hreads reactions
  have hconn : (w.step (.segment start data true ackn winsize reactions)).conn =
      (d.processFin (Guest.packet (w.guest.isn.toNat + 1 + start) data true ackn winsize)
        reactions).pump := (if_pos hreads.1).trans heq
  have hguest : (w.step (.segment start data true ackn winsize reactions)).guest =
      ⟨w.guest.isn, w.guest.stream, true⟩ := by
    change Guest.mk _ (if _ then _ else _) (w.guest.fin || true) = _
    rw [if_neg hold, Bool.or_true]
  have hn : Guest.next ⟨w.guest.isn, w.guest.stream, true⟩ = d.ack + 1 := by
    rw [hack, h.ack, Guest.next, Guest.next, hfin]
    rfl
  have hyields := yields_processFin d (Guest.packet (w.guest.isn.toNat + 1 + start) data true ackn
    winsize) reactions
  refine World.delivers_of_yields [] h ?_ ?_ ?_ ?_
  · rw [hguest, hn, hconn]
    exact (hyields.trans (calls_pump _).answers).of_outputs houtputs
  · rw [hguest]
  · rw [hguest, append_nil]
  · rw [hguest]
    exact nofun

/-- One step. -/
theorem World.inv_step (w : World) (a : Action) (ha : w.guest.Allows a) (h : w.Inv)
    (hc : w.Clean a) : (w.step a).Inv ∧ w.Delivers a := by
  cases a with
  | host op =>
    have hcalls := calls_perform w.conn op
    exact World.inv_old h rfl hcalls.answers fun hfin => hcalls.alive (h.alive hfin)
  | probe garbage ackn winsize reactions => exact World.inv_probe h hc
  | segment start data fin ackn winsize reactions =>
    obtain ⟨hstart, hbytes, -⟩ := ha
    obtain ⟨hresets, hnew, hfins⟩ := hc
    by_cases hbrings : w.guest.Brings start data
    · -- new bytes, in a segment of their own
      obtain ⟨rfl, hwrap, rfl, hcompletes⟩ := hnew hbrings
      have hbrings' := hbrings
      unfold Guest.Brings at hbrings'
      have hdata : data ≠ [] := by
        rintro rfl
        simp at hbrings'
      have hfin : w.guest.fin = false := by
        rcases hbytes with hold | hnew
        · have := hold.length_le
          rw [length_drop] at this
          omega
        · exact hnew.2
      exact World.inv_data h hdata hfin ((h.alive hfin).reads (hresets hfin) hcompletes) hwrap
    · have hle : start + data.length ≤ w.guest.stream.length := Nat.le_of_not_lt hbrings
      have hstream : (w.step (.segment start data fin ackn winsize reactions)).guest =
          ⟨w.guest.isn, w.guest.stream, w.guest.fin || fin⟩ := by
        change Guest.mk _ (if _ then _ else _) (w.guest.fin || fin) = _
        rw [if_neg hbrings]
      by_cases hfirst : fin = true ∧ w.guest.fin = false
      · obtain ⟨rfl, hfin⟩ := hfirst
        have hcompletes := hfins rfl
        rw [hfin, if_neg (by decide)] at hcompletes
        exact World.inv_fin h hfin ((h.alive hfin).reads (hresets hfin) hcompletes) hbrings
      · have hguest : (w.step (.segment start data fin ackn winsize reactions)).guest =
            w.guest := by
          have hor : (w.guest.fin || fin) = w.guest.fin := by
            cases fin with
            | false => exact Bool.or_false _
            | true =>
              cases hf : w.guest.fin with
              | true => rfl
              | false => exact absurd ⟨rfl, hf⟩ hfirst
          rw [hstream, hor]
        have hold := deliver_old (c := w.conn)
          (plain_packet (w.guest.isn.toNat + 1 + start) data fin ackn winsize) reactions
          fun hreads => by
            cases fin with
            | true =>
              have hunread := hfins rfl
              cases hf : w.guest.fin with
              | false => exact absurd ⟨rfl, hf⟩ hfirst
              | true =>
                rw [hf, if_pos rfl] at hunread
                exact absurd hreads hunread
            | false =>
              refine ⟨rfl, ?_⟩
              by_cases hdata : data = []
              · exact .inr hdata
              · refine .inl fun hseq => ?_
                have hpos := List.length_pos_iff.2 hdata
                have hseq : w.conn.ack =
                  (BitVec.ofNat 32 (w.guest.isn.toNat + 1 + start)).toNat := hseq
                have hmod := toNat_ofNat_le (w.guest.isn.toNat + 1 + start)
                rw [h.ack, Guest.next] at hseq
                omega
        exact World.inv_old h hguest hold.1 fun hfin => hold.2 (hresets hfin) (h.alive hfin)

/-! ## Opening -/

/-- A connection of the guest that was accepted, or one of the host that the guest accepted. -/
inductive Conn.Opened (isn : BitVec 32) : Conn → Prop
  | accepted (mtu : Nat) (p : Packet) (h : p.seq = isn) :
    Opened isn ({ Conn.new mtu with state := .synReceived }.accept p)
  | connected (mtu : Nat) (ops : List HostOp) (p : Packet) (reactions : List HostOp)
    (h : p.seq = isn) (hsyn : p.syn = true) (hack : p.ack = true) (hrst : p.rst = false)
    (hstate : (ops.foldl perform { Conn.new mtu with registered := true }.connect).state =
      .synSent) :
    Opened isn ((ops.foldl perform { Conn.new mtu with registered := true }.connect).process p
      reactions)

/-- A connection that waits for the guest to accept it was not closed. -/
def Conn.Waits (c : Conn) : Prop :=
  c.state = .synSent →
    c.registered = true ∧ c.inActiveClose = false ∧ c.delayedSendFin = false

theorem waits_pump (h : c.Waits) : c.pump.Waits := by
  unfold pump
  split
  · exact h
  · exact h

theorem waits_enqueue {d : Conn} {dataArray : List (List Byte)}
    (henqueue : c.enqueue dataArray = some d) (h : c.Waits) : d.Waits := by
  induction dataArray generalizing c with
  | nil => exact Option.some.inj henqueue ▸ h
  | cons data dataArray ih =>
    unfold enqueue at henqueue
    split at henqueue
    · exact ih henqueue h
    · cases henqueue

theorem waits_writev (h : c.Waits) (dataArray : List (List Byte)) : (c.writev dataArray).Waits := by
  unfold writev
  split
  · exact waits_pump h
  · split
    case h_1 d henqueue => exact waits_pump (waits_enqueue henqueue h)
    · exact h

theorem waits_close (h : c.Waits) : c.close.Waits := by
  unfold close
  split
  · exact waits_pump h
  dsimp only
  cases hnext : closeState { c with inActiveClose := true } with
  | none =>
    dsimp only
    unfold release
    split
    · exact nofun
    case isFalse hregistered =>
      intro hstate
      exact absurd (h hstate).1 hregistered
  | some nextState =>
    have hne : c.state ≠ .synSent ∧ nextState ≠ .synSent := by
      unfold closeState at hnext
      dsimp only at hnext
      split at hnext
      all_goals
        first
        | cases hnext
          constructor
          · simp [*]
          · decide
        | cases hnext
    dsimp only
    split
    · exact waits_pump fun hstate => absurd hstate hne.1
    · exact waits_pump fun hstate => absurd hstate hne.2

theorem waits_foldl {ops : List HostOp} (h : c.Waits) : (ops.foldl perform c).Waits := by
  induction ops generalizing c with
  | nil => exact h
  | cons op ops ih =>
    refine ih ?_
    cases op with
    | write data => exact waits_writev h [data]
    | writev dataArray => exact waits_writev h dataArray
    | close => exact waits_close h

/-- Before the first segment the guest has sent nothing of its stream. -/
theorem Conn.Opened.inv {isn : BitVec 32} (h : c.Opened isn) : World.Inv ⟨⟨isn, [], false⟩, c⟩ := by
  cases h with
  | accepted mtu p h =>
    subst h
    exact ⟨rfl, rfl, fun _ => ⟨rfl, .inl rfl, fun _ => rfl, nofun⟩⟩
  | connected mtu ops p reactions h hsyn hack hrst hstate =>
    subst h
    have hcalls := calls_foldl ops { Conn.new mtu with registered := true }.connect
    have hwaits : (ops.foldl perform { Conn.new mtu with registered := true }.connect).Waits :=
      waits_foldl fun _ => ⟨rfl, rfl, rfl⟩
    revert hcalls hwaits hstate
    generalize ops.foldl perform { Conn.new mtu with registered := true }.connect = d
    intro hstate hcalls hwaits
    obtain ⟨hregistered, hactive, hdelayed⟩ := hwaits hstate
    obtain ⟨-, os, hos, -, hreceived⟩ := hcalls.answers
    have hnone : received d.outputs = [] := by
      rw [hos, received_append, hreceived]
      rfl
    unfold process
    rw [hstate, if_neg (by decide), hrst, if_neg (by decide), hsyn, if_pos rfl]
    unfold processSyn
    rw [if_pos ⟨hstate, hack⟩]
    dsimp only
    generalize hopen : ({ ({ d with
      ack := p.seq.toNat + 1
      startSeq := p.seq.toNat
      lastReceivedAckn := some p.ackn.toNat } : Conn).send (ipv4Reply { d with
        ack := p.seq.toNat + 1
        startSeq := p.seq.toNat
        lastReceivedAckn := some p.ackn.toNat }) with state := .established } : Conn) = e
    have hreactions := calls_emitTo (c := e) (e := .connect) rfl reactions
    have halive : e.Alive := by
      subst hopen
      exact ⟨hregistered, .inl rfl, fun _ => rfl, fun hd => absurd (hdelayed.symm.trans hd) nofun⟩
    have hack : e.ack = Guest.next ⟨p.seq, [], false⟩ := by
      subst hopen
      rfl
    have houtputs : received e.outputs = [] := by
      subst hopen
      change received (d.outputs ++ [_]) = []
      rw [received_append, hnone]
      rfl
    obtain ⟨hack', os', hos', -, hreceived'⟩ := hreactions.answers
    refine ⟨hack'.trans hack, ?_, fun _ => hreactions.alive halive⟩
    change received (e.emitTo .connect reactions).outputs = []
    rw [hos', received_append, hreceived', houtputs]
    rfl

/-- From any opened connection: after every step of a run whose steps are clean, exactly the bytes
that the guest has sent were emitted, in their order, and what is sent acknowledges them (and the
FIN). -/
theorem delivers_stream {c : Conn} {isn : BitVec 32} (hopened : c.Opened isn)
    (actions : List Action)
    (hallows : Runs.Each World.step (fun w a => w.guest.Allows a) ⟨⟨isn, [], false⟩, c⟩ actions)
    (hclean : Runs.Each World.step World.Clean ⟨⟨isn, [], false⟩, c⟩ actions) :
    Runs.Each World.step World.Delivers ⟨⟨isn, [], false⟩, c⟩ actions :=
  Runs.each_of (A := fun _ => True)
    (fun w a _ h hc => World.inv_step w a hc.1 h hc.2) (fun _ _ => trivial) hopened.inv
    (hallows.and hclean)

/-- The guest's SYN, and the connection that is accepted for it. -/
def sampleSyn : Packet := ⟨0, 0, 64240, false, true, false, false, []⟩

def sampleConn : Conn := { Conn.new 1500 with state := .synReceived }.accept sampleSyn

theorem opened_sample : sampleConn.Opened 0 := .accepted 1500 sampleSyn rfl

theorem not_resets (last : Option Nat) (h : c.lastReceivedAckn = last)
    (hle : ∀ l, last = some l → l ≤ ackn.toNat) : ¬c.Resets ackn := by
  rintro ⟨l, hl, hlt⟩
  have := hle l (h.symm.trans hl)
  omega

theorem not_completes (h : c.delayedSendFin = false) : ¬c.Completes ackn := by
  rintro ⟨_, _, _, hfin⟩
  cases h.symm.trans hfin.1

/-- Two bytes, the first of them once more, and the FIN. -/
theorem delivers_sample : Runs.Each World.step World.Delivers ⟨⟨0, [], false⟩, sampleConn⟩
    [.segment 0 [1, 2] false 1338 0 [], .segment 0 [1] false 1338 0 [],
      .segment 2 [] true 1338 0 []] := by
  refine delivers_stream opened_sample _ ⟨?_, ?_, ?_, trivial⟩ ⟨?_, ?_, ?_, trivial⟩
  · exact ⟨by decide, .inr ⟨by decide, rfl⟩, by decide⟩
  · exact ⟨by decide, .inl (by decide), by decide⟩
  · exact ⟨by decide, .inl (by decide), by decide⟩
  · exact ⟨fun _ => not_resets none rfl nofun,
      fun _ => ⟨rfl, by decide, rfl, not_completes rfl⟩, nofun⟩
  · refine ⟨fun _ => not_resets (some 1338) (by decide +kernel) ?_,
      fun hb => absurd hb (by decide +kernel), nofun⟩
    intro l hl
    obtain rfl := Option.some.inj hl
    decide
  · refine ⟨fun _ => not_resets (some 1338) (by decide +kernel) ?_,
      fun hb => absurd hb (by decide +kernel), fun _ => ?_⟩
    · intro l hl
      obtain rfl := Option.some.inj hl
      decide
    · rw [if_neg (by decide +kernel)]
      exact not_completes (by decide +kernel)

/-- A FIN that shares its segment with a byte: the byte is not emitted. -/
theorem fin_drops_data : ¬∀ (c : Conn) (isn : BitVec 32), c.Opened isn → ∀ actions : List Action,
    Runs.Each World.step (fun w a => w.guest.Allows a) ⟨⟨isn, [], false⟩, c⟩ actions →
    Runs.Each World.step World.Delivers ⟨⟨isn, [], false⟩, c⟩ actions := by
  intro h
  obtain ⟨⟨hreceived, -⟩, -⟩ := h sampleConn 0 opened_sample [.segment 0 [1] true 1338 0 []]
    ⟨⟨by decide, .inr ⟨by decide, rfl⟩, by decide⟩, trivial⟩
  revert hreceived
  decide +kernel

end V86.Net
