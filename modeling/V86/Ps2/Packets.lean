import V86.Ps2.Coherent

/-!
# The mouse's packets

A guest that sends no commands reads the packets of the mouse one after another, as long as each of
them fits into the queue when the mouse sends it (`Delivers`). The queue overwrites what is in it
when it is full, a byte at a time, so after one packet that does not fit the guest reads parts of
packets (`torn_by_overflow`).
-/

namespace V86.Ps2

open List

variable {s : PS2}

/-! ## Packets that fit -/

/-- The bytes of a packet: the wheel has one of its own, in the mice that have a wheel. -/
def PS2.packetLength (s : PS2) : Nat := if s.mouseId = 4 ∨ s.mouseId = 3 then 4 else 3

theorem length_packet (s : PS2) (dx dy : Int) : (s.packet dx dy).length = s.packetLength := by
  rw [PS2.packet, PS2.packetLength, length_append]
  by_cases h4 : s.mouseId = 4
  · rw [if_pos h4, if_pos (Or.inl h4 : s.mouseId = 4 ∨ s.mouseId = 3)]
    rfl
  by_cases h3 : s.mouseId = 3
  · rw [if_neg h4, if_pos h3, if_pos (Or.inr h3 : s.mouseId = 4 ∨ s.mouseId = 3)]
    rfl
  · rw [if_neg h4, if_neg h3, if_neg (not_or.2 ⟨h4, h3⟩)]
    rfl

/-- What was read of the mouse and what is in its queue are the packets it has sent. -/
structure Delivers (s : PS2) : Prop where
  sound : s.mouseBuffer.Sound
  bytes : s.mouseRead ++ s.mouseBuffer.contents = s.packets.flatten
  whole : ∀ p ∈ s.packets, p.length = s.packetLength

theorem Delivers.of_same {s' : PS2} (hsame : SameQueues s s') (h : Delivers s) : Delivers s' where
  sound := by
    rw [hsame.mouseBuffer]
    exact h.sound
  bytes := by
    rw [hsame.mouseRead, hsame.mouseBuffer, hsame.packets]
    exact h.bytes
  whole := by
    rw [hsame.packets, PS2.packetLength, hsame.mouseId]
    exact h.whole

/-- A packet that fits goes behind the others. -/
theorem Delivers.sendMousePacket (h : Delivers s)
    (hfits : s.mouseBuffer.length + s.packetLength ≤ ByteQueue.size) (dx dy : Int) :
    Delivers (s.sendMousePacket dx dy) := by
  have hlength := length_packet s dx dy
  have hroom : s.mouseBuffer.length + (s.packet dx dy).length ≤ ByteQueue.size := by
    rw [hlength]
    exact hfits
  obtain ⟨hsound, hcontents⟩ := h.sound.foldl_push hroom
  refine Delivers.of_same (sameQueues_raiseIrq _) ⟨hsound, ?_, fun p hp => ?_⟩
  · change s.mouseRead ++ ((s.packet dx dy).foldl ByteQueue.push s.mouseBuffer).contents =
      (s.packets ++ [s.packet dx dy]).flatten
    rw [hcontents, ← append_assoc, h.bytes, flatten_append, flatten_cons, flatten_nil, append_nil]
  · rcases List.mem_append.1 hp with hp | hp
    · exact h.whole p hp
    · rw [List.mem_singleton.1 hp]
      exact hlength

/-- A byte that is read of the mouse is the first of those not read. -/
theorem Delivers.port60Read (h : Delivers s) (hcoherent : Coherent s) :
    Delivers s.port60Read.2 := by
  by_cases hready : s.nextByteIsReady = true
  · have hne := hcoherent.source hready
    rw [PS2.announced] at hne
    by_cases haux : s.nextByteIsAux = true
    · rw [if_pos haux] at hne
      obtain ⟨hsound, hcontents⟩ := h.sound.shift hne
      refine Delivers.of_same (port60Read_mouse haux hne).2 ⟨hsound, ?_, h.whole⟩
      change (s.mouseRead ++ [s.mouseBuffer.peek]) ++ s.mouseBuffer.shift.contents =
        s.packets.flatten
      rw [← h.bytes, hcontents, append_assoc]
      rfl
    · rw [if_neg haux] at hne
      refine Delivers.of_same (port60Read_kbd haux hne).2 ?_
      exact ⟨h.sound, h.bytes, h.whole⟩
  · have hempty : s.kbdBuffer.length = 0 ∧ s.mouseBuffer.length = 0 := by
      have hnot := not_or.1 fun h => hready (hcoherent.ready.2 h)
      exact ⟨not_not.1 hnot.1, not_not.1 hnot.2⟩
    rw [PS2.port60Read]
    dsimp only
    rw [if_pos hempty]
    exact ⟨h.sound, h.bytes, h.whole⟩

/-! ## Runs without commands -/

/-- What can happen while the guest sends no commands. -/
def CommandFree : Event → Prop
  | .key _ | .delta _ _ | .click _ _ _ | .wheel _ _ | .read60 => True
  | .write60 _ | .write64 _ | .reset | .restore _ => False

/-- Whether the mouse reports what the host does with it. -/
def PS2.reports (s : PS2) : Bool := s.haveMouse && s.useMouse && s.mouseStreamActive

/-- Whether the mouse sends a packet at an event. -/
def PS2.sends (s : PS2) : Event → Bool
  | .delta x y =>
    s.reports && (toInt32 (s.mouseDeltaX + x) ≠ 0 || toInt32 (s.mouseDeltaY + y) ≠ 0)
  | .click _ _ _ | .wheel _ _ => s.reports
  | _ => false

/-- There is room in the mouse's queue for a packet that is sent. -/
def Fits (s : PS2) (e : Event) : Prop :=
  s.sends e = true → s.mouseBuffer.length + s.packetLength ≤ ByteQueue.size

theorem reports_of (h : ¬(!s.haveMouse || !s.useMouse) = true) (hactive : s.mouseStreamActive = true) :
    s.reports = true := by
  rw [PS2.reports, hactive]
  revert h
  cases s.haveMouse <;> cases s.useMouse <;> simp

/-- What the host's movements add up to does not matter for whether they are reported. -/
theorem mouseStreamActive_delta (s : PS2) (x y : ℚ) :
    { s with mouseDeltaX := x, mouseDeltaY := y }.mouseStreamActive = s.mouseStreamActive := by
  rw [PS2.mouseStreamActive, PS2.mouseStreamActive]

theorem mouseStreamActive_clicks (s : PS2) (clicks : Byte) :
    { s with mouseClicks := clicks }.mouseStreamActive = s.mouseStreamActive := by
  rw [PS2.mouseStreamActive, PS2.mouseStreamActive]

theorem delivers_step (h : Delivers s) (hcoherent : Coherent s) {e : Event} (he : CommandFree e)
    (hfits : Fits s e) : Delivers (step s e) := by
  cases e with
  | key code =>
    change Delivers (s.kbdSendCode code)
    rw [PS2.kbdSendCode]
    split
    · exact Delivers.of_same (sameQueues_raiseIrq _) ⟨h.sound, h.bytes, h.whole⟩
    · exact h
  | delta x y =>
    change Delivers (s.mouseSendDelta x y)
    rw [PS2.mouseSendDelta]
    split
    · exact h
    · next hmouse =>
      refine iteInduction (fun hsends => ?_) fun _ => ⟨h.sound, h.bytes, h.whole⟩
      rw [mouseStreamActive_delta, Bool.and_eq_true] at hsends
      refine Delivers.sendMousePacket ?_ ?_ _ _
      · exact ⟨h.sound, h.bytes, h.whole⟩
      · refine hfits ?_
        rw [PS2.sends, reports_of hmouse hsends.1]
        exact hsends.2
  | click left middle right =>
    change Delivers (s.mouseSendClick left middle right)
    rw [PS2.mouseSendClick]
    split
    · exact h
    · next hmouse =>
      refine iteInduction (fun hactive => ?_) fun _ => ⟨h.sound, h.bytes, h.whole⟩
      rw [mouseStreamActive_clicks] at hactive
      refine Delivers.sendMousePacket ?_ ?_ _ _
      · exact ⟨h.sound, h.bytes, h.whole⟩
      · exact hfits (reports_of hmouse hactive)
  | wheel y x =>
    change Delivers (s.mouseWheel y x)
    rw [PS2.mouseWheel]
    split
    · exact h
    · next hmouse =>
      rw [Bool.or_eq_true, not_or] at hmouse
      refine Delivers.sendMousePacket ?_ ?_ _ _
      · exact ⟨h.sound, h.bytes, h.whole⟩
      · exact hfits (reports_of hmouse.1 (by
          rw [← Bool.not_eq_false]
          exact fun h => hmouse.2 (by rw [h]; rfl)))
  | read60 => exact h.port60Read hcoherent
  | write60 byte => exact he.elim
  | write64 byte => exact he.elim
  | reset => exact he.elim
  | restore saved => exact he.elim

theorem delivers_run {events : List Event} (h : Delivers s) (hcoherent : Coherent s)
    (hfree : ∀ e ∈ events, CommandFree e) (hfits : Runs.Each step Fits s events) :
    Delivers (run s events) :=
  (Runs.inv_of (A := CommandFree) (I := fun s => Delivers s ∧ Coherent s) (G := fun _ _ => True)
    (fun _ e he h hfits => ⟨⟨delivers_step h.1 h.2 he hfits, coherent_step h.2 e⟩, trivial⟩)
    hfree ⟨h, hcoherent⟩ hfits).1

/-! ## The controller's output -/

/-- How a controller starts: it is reset, or it gets a state that was saved. -/
inductive Start where
  | reset
  | restore (saved : PS2)

/-- The controller after its start. -/
def PS2.start (s : PS2) : Start → PS2
  | .reset => s.reset
  | .restore saved => s.setState saved

theorem coherent_start (s : PS2) (start : Start) : Coherent (s.start start) := by
  cases start with
  | reset | restore saved => exact ⟨⟨nofun, fun h => absurd rfl (h.elim id id)⟩, nofun⟩

theorem delivers_start (s : PS2) (start : Start) : Delivers (s.start start) := by
  cases start with
  | reset => exact ⟨ByteQueue.sound_clear .empty, rfl, nofun⟩
  | restore saved => exact ⟨ByteQueue.sound_clear s.mouseBuffer, rfl, nofun⟩

/-- Whatever happens to the controller, the status register announces what the guest reads. Without
commands the guest reads the packets of the mouse, as long as they fit into the queue. -/
theorem announces_and_delivers (s : PS2) (start : Start) (events : List Event) :
    Announces (run (s.start start) events) ∧
      ((∀ e ∈ events, CommandFree e) → Runs.Each step Fits (s.start start) events →
        Delivers (run (s.start start) events)) :=
  ⟨(coherent_run (coherent_start s start) events).announces,
    delivers_run (delivers_start s start) (coherent_start s start)⟩

/-- A mouse that the guest had switched on when the state was saved. -/
def streaming : Start := .restore { PS2.init with enableMouseStream := true, useMouse := true }

/-- A button goes down and up; the guest reads the first packet and a byte of the second. -/
def clickRead : List Event :=
  [.click true false false, .read60, .click false false false, .read60, .read60, .read60]

/-- Both packets fit, and they arrive. -/
theorem announces_and_delivers_click : Delivers (run (PS2.init.start streaming) clickRead) := by
  refine (announces_and_delivers .init streaming clickRead).2 ?_ ?_
  · simp [clickRead, CommandFree]
  · refine ⟨?_, ?_, ?_, ?_, ?_, ?_, trivial⟩ <;> intro _ <;> decide +kernel

example : (run (PS2.init.start streaming) clickRead).mouseRead = [9, 0, 0, 8] := by decide +kernel

/-- The bytes read of the mouse are bytes of whole packets that it has sent. -/
def ReadsPackets (s : PS2) : Prop :=
  ∃ packets : List (List Byte), (∀ p ∈ packets, p ∈ s.packets) ∧ s.mouseRead <+: packets.flatten

/-- The left button is reported 342 times, in 1026 bytes; then the guest reads a byte. -/
def clicking : List Event := List.replicate 342 (.click true false false) ++ [.read60]

/-- The guest reads the end of a packet whose first byte it never reads. -/
theorem torn_by_overflow :
    ¬∀ (s : PS2) (start : Start) (events : List Event), (∀ e ∈ events, CommandFree e) →
      ReadsPackets (run (s.start start) events) := by
  intro h
  obtain ⟨packets, hsent, hread⟩ := h .init streaming clicking (by
    intro e he
    rcases List.mem_append.1 he with he | he
    · rw [eq_of_mem_replicate he]
      trivial
    · rw [List.mem_singleton.1 he]
      trivial)
  -- all that the mouse sends begins with 9, and the second byte of the last packet is read first
  have hpackets : (run (PS2.init.start streaming) clicking).packets =
      List.replicate 342 [9, 0, 0] := by decide +kernel
  have hzero : (run (PS2.init.start streaming) clicking).mouseRead = [0] := by decide +kernel
  rw [hzero] at hread
  cases packets with
  | nil => exact absurd (List.prefix_nil.1 hread) (cons_ne_nil _ _)
  | cons p packets =>
    have hp := hsent p mem_cons_self
    rw [hpackets] at hp
    rw [eq_of_mem_replicate hp] at hread
    obtain ⟨rest, hrest⟩ := hread
    exact absurd (List.cons.inj hrest).1 (by decide)

end V86.Ps2
