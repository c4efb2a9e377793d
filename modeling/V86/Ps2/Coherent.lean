import V86.Ps2.Controller

/-!
# The output buffer

The controller announces a byte while one of the queues has one, and it announces a queue that is
not empty (`Coherent`): every command that empties a queue puts something into one and announces
that. So what the status register says of the next byte is what the guest reads (`Announces`).
-/

namespace V86.Ps2

open List

variable {s : PS2} {q : ByteQueue}

/-! ## Queues -/

namespace ByteQueue

theorem length_push (q : ByteQueue) (item : Byte) : (q.push item).length ≠ 0 := by
  change (if q.length = size then q.length else q.length + 1) ≠ 0
  split
  · next h =>
    rw [h]
    decide
  · exact Nat.succ_ne_zero _

theorem length_foldl_push {bytes : List Byte} (h : q.length ≠ 0 ∨ bytes ≠ []) :
    (bytes.foldl push q).length ≠ 0 := by
  induction bytes generalizing q with
  | nil => exact h.resolve_right fun h => h rfl
  | cons byte bytes ih => exact ih (.inl (q.length_push byte))

/-- What is in a queue. -/
def contents (q : ByteQueue) : List Byte :=
  (List.range q.length).map fun i => q.data ((q.start + i) % size)

/-- A queue that was never overwritten. -/
structure Sound (q : ByteQueue) : Prop where
  start : q.start < size
  length : q.length ≤ size
  stop : q.stop = (q.start + q.length) % size

theorem sound_clear (q : ByteQueue) : q.clear.Sound :=
  ⟨(by decide : 0 < size), Nat.zero_le _, rfl⟩

/-- A byte that fits is put behind the others. -/
theorem Sound.push (h : q.Sound) (hfits : q.length < size) (item : Byte) :
    (q.push item).Sound ∧ (q.push item).contents = q.contents ++ [item] ∧
      (q.push item).length = q.length + 1 := by
  have hlength : (q.push item).length = q.length + 1 := if_neg (Nat.ne_of_lt hfits)
  have hstart := h.start
  have hstop := h.stop
  rw [size] at hfits hstart hstop
  refine ⟨⟨h.start, by rw [hlength]; exact hfits, ?_⟩, ?_, hlength⟩
  · rw [hlength]
    change (q.stop + 1) % size = (q.start + (q.length + 1)) % size
    rw [hstop, size]
    omega
  · rw [contents, hlength, range_succ, map_append, contents]
    congr 1
    · refine map_congr_left fun i hi => ?_
      have hi := List.mem_range.1 hi
      refine Function.update_of_ne ?_ ..
      change (q.start + i) % size ≠ q.stop
      rw [hstop, size]
      omega
    · change [Function.update q.data q.stop item ((q.start + q.length) % size)] = [item]
      rw [h.stop, Function.update_self]

theorem Sound.foldl_push {bytes : List Byte} (h : q.Sound) (hfits : q.length + bytes.length ≤ size) :
    (bytes.foldl ByteQueue.push q).Sound ∧
      (bytes.foldl ByteQueue.push q).contents = q.contents ++ bytes := by
  induction bytes generalizing q with
  | nil => exact ⟨h, (append_nil _).symm⟩
  | cons byte bytes ih =>
    rw [length_cons] at hfits
    obtain ⟨hpush, hcontents, hlength⟩ := h.push (by omega) byte
    obtain ⟨hsound, hbytes⟩ := ih hpush (by omega)
    refine ⟨hsound, ?_⟩
    rw [foldl_cons, hbytes, hcontents, append_assoc]
    rfl

/-- The first byte is taken out. -/
theorem Sound.shift (h : q.Sound) (hne : q.length ≠ 0) :
    q.shift.Sound ∧ q.contents = q.peek :: q.shift.contents := by
  have hstart := h.start
  have hlength := h.length
  have hstop := h.stop
  rw [size] at hstart hlength hstop
  have hshift : q.shift = { q with start := (q.start + 1) % size, length := q.length - 1 } :=
    if_neg hne
  obtain ⟨n, hn⟩ := Nat.exists_eq_succ_of_ne_zero hne
  rw [hshift]
  refine ⟨⟨Nat.mod_lt _ (by decide), ?_, ?_⟩, ?_⟩
  · change q.length - 1 ≤ size
    rw [size]
    omega
  · change q.stop = ((q.start + 1) % size + (q.length - 1)) % size
    rw [hstop, size]
    omega
  · rw [contents, contents, peek, if_neg hne, hn, range_succ_eq_map, map_cons, List.map_map]
    congr 1
    · rw [Nat.add_zero, Nat.mod_eq_of_lt h.start]
    · refine map_congr_left fun i _ => ?_
      change q.data ((q.start + (i + 1)) % size) = q.data (((q.start + 1) % size + i) % size)
      rw [Nat.mod_add_mod]
      congr 2
      omega

end ByteQueue

/-! ## Announcing -/

/-- The queue that the byte in the output buffer is in. -/
def PS2.announced (s : PS2) : ByteQueue := if s.nextByteIsAux then s.mouseBuffer else s.kbdBuffer

/-- A byte is announced while there is one, in a queue that has one. -/
structure Coherent (s : PS2) : Prop where
  ready : s.nextByteIsReady = true ↔ s.kbdBuffer.length ≠ 0 ∨ s.mouseBuffer.length ≠ 0
  source : s.nextByteIsReady = true → s.announced.length ≠ 0

theorem coherent_kbdIrq (h : s.kbdBuffer.length ≠ 0) : Coherent s.kbdIrq := by
  rw [PS2.kbdIrq]
  dsimp only
  split
  · exact ⟨⟨fun _ => .inl h, fun _ => rfl⟩, fun _ => h⟩
  · exact ⟨⟨fun _ => .inl h, fun _ => rfl⟩, fun _ => h⟩

theorem coherent_mouseIrq (h : s.mouseBuffer.length ≠ 0) : Coherent s.mouseIrq := by
  rw [PS2.mouseIrq]
  dsimp only
  split
  · exact ⟨⟨fun _ => .inr h, fun _ => rfl⟩, fun _ => h⟩
  · exact ⟨⟨fun _ => .inr h, fun _ => rfl⟩, fun _ => h⟩

/-- `raise_irq` announces what there is, unless a byte is announced already. -/
theorem coherent_raiseIrq (h : s.nextByteIsReady = true → s.announced.length ≠ 0) :
    Coherent s.raiseIrq := by
  rw [PS2.raiseIrq]
  split
  · next hready =>
    refine ⟨⟨fun _ => ?_, fun _ => hready⟩, h⟩
    have hsource := h hready
    rw [PS2.announced] at hsource
    split at hsource
    · exact .inr hsource
    · exact .inl hsource
  · next hready =>
    split
    · next hkbd => exact coherent_kbdIrq hkbd
    · next hkbd =>
      split
      · next hmouse => exact coherent_mouseIrq hmouse
      · next hmouse =>
        exact ⟨⟨fun h => absurd h hready, fun hor => absurd hor (not_or.2 ⟨hkbd, hmouse⟩)⟩,
          fun h => absurd h hready⟩

/-- What is put into the queues leaves the announced one with something in it. -/
theorem announced_mono {s' : PS2} (haux : s'.nextByteIsAux = s.nextByteIsAux)
    (hkbd : s.kbdBuffer.length ≠ 0 → s'.kbdBuffer.length ≠ 0)
    (hmouse : s.mouseBuffer.length ≠ 0 → s'.mouseBuffer.length ≠ 0)
    (h : s.announced.length ≠ 0) : s'.announced.length ≠ 0 := by
  rw [PS2.announced] at h
  rw [PS2.announced, haux]
  split
  · next htrue =>
    rw [if_pos htrue] at h
    exact hmouse h
  · next hfalse =>
    rw [if_neg hfalse] at h
    exact hkbd h

theorem packet_ne_nil (s : PS2) (dx dy : Int) : s.packet dx dy ≠ [] := by
  unfold PS2.packet
  exact cons_ne_nil _ _

/-- A packet is announced if nothing is. -/
theorem coherent_sendMousePacket (h : s.nextByteIsReady = true → s.announced.length ≠ 0)
    (dx dy : Int) : Coherent (s.sendMousePacket dx dy) :=
  coherent_raiseIrq fun hready => announced_mono (s := s) rfl id
    (fun _ => ByteQueue.length_foldl_push (.inr (packet_ne_nil s dx dy))) (h hready)

/-! ## Events -/

theorem coherent_kbdSendCode (h : Coherent s) (code : Byte) : Coherent (s.kbdSendCode code) := by
  rw [PS2.kbdSendCode]
  split
  · exact coherent_raiseIrq fun hready =>
      announced_mono (s := s) rfl (fun _ => ByteQueue.length_push _ _) id (h.source hready)
  · exact h

theorem coherent_mouseSendDelta (h : Coherent s) (x y : ℚ) : Coherent (s.mouseSendDelta x y) := by
  rw [PS2.mouseSendDelta]
  split
  · exact h
  · dsimp only
    split
    · refine coherent_sendMousePacket ?_ _ _
      exact h.source
    · exact ⟨h.ready, h.source⟩

theorem coherent_mouseSendClick (h : Coherent s) (left middle right : Bool) :
    Coherent (s.mouseSendClick left middle right) := by
  rw [PS2.mouseSendClick]
  split
  · exact h
  · dsimp only
    split
    · refine coherent_sendMousePacket ?_ _ _
      exact h.source
    · exact ⟨h.ready, h.source⟩

theorem coherent_mouseWheel (h : Coherent s) (y x : ℚ) : Coherent (s.mouseWheel y x) := by
  rw [PS2.mouseWheel]
  split
  · exact h
  · refine coherent_sendMousePacket ?_ _ _
    exact h.source

/-- What is left in the queues after a read is announced. -/
theorem coherent_read (s : PS2) (hready : s.nextByteIsReady = false) :
    Coherent (if s.kbdBuffer.length ≠ 0 ∨ s.mouseBuffer.length ≠ 0 then s.raiseIrq else s) := by
  have hnot : ¬s.nextByteIsReady = true := ne_true_of_eq_false hready
  split
  · exact coherent_raiseIrq fun h => absurd h hnot
  · next hempty =>
    exact ⟨⟨fun h => absurd h hnot, fun hor => absurd hor hempty⟩, fun h => absurd h hnot⟩

theorem coherent_port60Read (s : PS2) : Coherent s.port60Read.2 := by
  rw [PS2.port60Read]
  refine iteInduction (motive := fun r : Byte × PS2 => Coherent r.2) (fun hempty => ?_) fun _ => ?_
  · exact ⟨⟨nofun, fun hor => absurd hempty (by tauto)⟩, nofun⟩
  · refine coherent_read _ ?_
    exact iteInduction (motive := fun t : PS2 => t.nextByteIsReady = false) (fun _ => rfl)
      fun _ => rfl

/-! ## Commands -/

/-- Setting the sample rate leaves the queues alone. -/
theorem mouseBuffer_setSampleRate (s : PS2) (writeByte : Byte) :
    (s.setSampleRate writeByte).mouseBuffer = s.mouseBuffer := by
  have hdefault (t : PS2) (ht : t.mouseBuffer = s.mouseBuffer) :
      (if t.sampleRate = 0 then { t with sampleRate := 100 } else t).mouseBuffer = s.mouseBuffer :=
    iteInduction (motive := fun t : PS2 => t.mouseBuffer = s.mouseBuffer) (fun _ => ht) fun _ => ht
  unfold PS2.setSampleRate
  refine hdefault _ ?_
  repeat'
    with_reducible
      refine iteInduction (motive := fun t : PS2 => t.mouseBuffer = s.mouseBuffer)
        (fun _ => ?_) fun _ => ?_
  all_goals rfl

/-- Two states with the same bytes in the queues and the same packets sent and read. -/
structure SameQueues (s s' : PS2) : Prop where
  kbdBuffer : s'.kbdBuffer = s.kbdBuffer
  mouseBuffer : s'.mouseBuffer = s.mouseBuffer
  mouseId : s'.mouseId = s.mouseId
  packets : s'.packets = s.packets
  mouseRead : s'.mouseRead = s.mouseRead

theorem SameQueues.refl (s : PS2) : SameQueues s s := ⟨rfl, rfl, rfl, rfl, rfl⟩

theorem sameQueues_kbdIrq (s : PS2) : SameQueues s s.kbdIrq :=
  iteInduction (motive := SameQueues s) (fun _ => ⟨rfl, rfl, rfl, rfl, rfl⟩)
    fun _ => ⟨rfl, rfl, rfl, rfl, rfl⟩

theorem sameQueues_mouseIrq (s : PS2) : SameQueues s s.mouseIrq :=
  iteInduction (motive := SameQueues s) (fun _ => ⟨rfl, rfl, rfl, rfl, rfl⟩)
    fun _ => ⟨rfl, rfl, rfl, rfl, rfl⟩

theorem sameQueues_raiseIrq (s : PS2) : SameQueues s s.raiseIrq := by
  rw [PS2.raiseIrq]
  refine iteInduction (motive := SameQueues s) (fun _ => .refl s) fun _ => ?_
  refine iteInduction (motive := SameQueues s) (fun _ => sameQueues_kbdIrq s) fun _ => ?_
  exact iteInduction (motive := SameQueues s) (fun _ => sameQueues_mouseIrq s) fun _ => .refl s

/-- A command to the mouse leaves its acknowledgement in the mouse's queue. -/
theorem length_mouseCommand (h : s.mouseBuffer.length ≠ 0) (writeByte : Byte) :
    (s.mouseCommand writeByte).mouseBuffer.length ≠ 0 := by
  unfold PS2.mouseCommand
  repeat'
    with_reducible
      refine iteInduction (motive := fun t : PS2 => t.mouseBuffer.length ≠ 0)
        (fun _ => ?_) fun _ => ?_
  all_goals
    first
    | exact h
    | exact ByteQueue.length_push _ _
    | rw [(sameQueues_raiseIrq _).mouseBuffer]; exact ByteQueue.length_push _ _
    | rw [PS2.sendMousePacket, (sameQueues_raiseIrq _).mouseBuffer]
      exact ByteQueue.length_foldl_push (.inl h)

/-- A command to the keyboard leaves its acknowledgement in the keyboard's queue. -/
theorem length_kbdCommand (h : s.kbdBuffer.length ≠ 0) (writeByte : Byte) :
    (s.kbdCommand writeByte).kbdBuffer.length ≠ 0 := by
  unfold PS2.kbdCommand
  repeat'
    with_reducible
      refine iteInduction (motive := fun t : PS2 => t.kbdBuffer.length ≠ 0)
        (fun _ => ?_) fun _ => ?_
  all_goals
    first
    | exact h
    | exact ByteQueue.length_push _ _

/-- A byte behind the one that is announced leaves that announced. -/
theorem Coherent.push_kbd (h : Coherent s) (item : Byte) (hkbd : s.kbdBuffer.length ≠ 0) :
    Coherent { s with kbdBuffer := s.kbdBuffer.push item } := by
  have hready := h.ready.2 (.inl hkbd)
  refine ⟨⟨fun _ => .inl (ByteQueue.length_push _ _), fun _ => hready⟩, fun _ => ?_⟩
  exact announced_mono (s := s) rfl (fun _ => ByteQueue.length_push _ _) id (h.source hready)

theorem coherent_port60Write (h : Coherent s) (writeByte : Byte) :
    Coherent (s.port60Write writeByte) := by
  unfold PS2.port60Write
  refine iteInduction (fun _ => ⟨h.ready, h.source⟩) fun _ => ?_
  refine iteInduction (fun _ => coherent_mouseIrq (ByteQueue.length_push _ _)) fun _ => ?_
  refine iteInduction (fun _ => coherent_mouseIrq ?_) fun _ => ?_
  · rw [mouseBuffer_setSampleRate]
    exact ByteQueue.length_push _ _
  refine iteInduction (fun _ => coherent_mouseIrq (ByteQueue.length_push _ _)) fun _ => ?_
  refine iteInduction (fun _ => coherent_kbdIrq (ByteQueue.length_push _ _)) fun _ => ?_
  refine iteInduction (fun _ => ?_) fun _ => ?_
  · have hkbd : Coherent
        { s with nextHandleScanCodeSet := false, kbdBuffer := s.kbdBuffer.push 0xFA }.kbdIrq :=
      coherent_kbdIrq (ByteQueue.length_push _ _)
    refine iteInduction (fun _ => hkbd) fun _ => hkbd.push_kbd 1 ?_
    rw [(sameQueues_kbdIrq _).kbdBuffer]
    exact ByteQueue.length_push _ _
  refine iteInduction (fun _ => coherent_kbdIrq (ByteQueue.length_push _ _)) fun _ => ?_
  refine iteInduction (fun _ => ?_) fun _ => ?_
  · refine iteInduction (fun _ => ⟨h.ready, h.source⟩) fun _ => ?_
    exact coherent_mouseIrq (length_mouseCommand (ByteQueue.length_push _ _) writeByte)
  refine iteInduction (fun _ => ⟨h.ready, h.source⟩) fun _ => ?_
  exact coherent_kbdIrq (length_kbdCommand (ByteQueue.length_push _ _) writeByte)

theorem coherent_port64Write (h : Coherent s) (writeByte : Byte) :
    Coherent (s.port64Write writeByte) := by
  unfold PS2.port64Write
  repeat' with_reducible refine iteInduction (motive := Coherent) (fun _ => ?_) fun _ => ?_
  all_goals
    first
    | exact ⟨h.ready, h.source⟩
    | exact coherent_kbdIrq (ByteQueue.length_push _ _)

/-- Every event leaves the output buffer coherent. -/
theorem coherent_step (h : Coherent s) (e : Event) : Coherent (step s e) := by
  cases e with
  | key code => exact coherent_kbdSendCode h code
  | delta x y => exact coherent_mouseSendDelta h x y
  | click left middle right => exact coherent_mouseSendClick h left middle right
  | wheel y x => exact coherent_mouseWheel h y x
  | read60 => exact coherent_port60Read s
  | write60 byte => exact coherent_port60Write h byte
  | write64 byte => exact coherent_port64Write h byte
  | reset | restore saved => exact ⟨⟨nofun, fun h => absurd rfl (h.elim id id)⟩, nofun⟩

theorem coherent_run (h : Coherent s) (events : List Event) : Coherent (run s events) := by
  induction events generalizing s with
  | nil => exact h
  | cons e events ih => exact ih (coherent_step h e)

/-! ## What a guest sees -/

/-- The queue that the status register announces. -/
def PS2.seen (s : PS2) : ByteQueue :=
  if s.port64Read &&& 0x20 ≠ 0 then s.mouseBuffer else s.kbdBuffer

/-- The controller after a byte was taken out of the announced queue. -/
def PS2.TakenFrom (s s' : PS2) : Prop :=
  if s.port64Read &&& 0x20 ≠ 0 then
    s'.mouseBuffer = s.mouseBuffer.shift ∧ s'.kbdBuffer = s.kbdBuffer
  else s'.kbdBuffer = s.kbdBuffer.shift ∧ s'.mouseBuffer = s.mouseBuffer

/-- The output buffer is full exactly when a queue has something. Then it is the announced queue
that has something, and the byte that is read is the first of that queue. -/
structure Announces (s : PS2) : Prop where
  full : s.port64Read &&& 1 ≠ 0 ↔ s.kbdBuffer.length ≠ 0 ∨ s.mouseBuffer.length ≠ 0
  source : s.port64Read &&& 1 ≠ 0 → s.seen.length ≠ 0
  byte : s.port64Read &&& 1 ≠ 0 → s.port60Read.1 = s.seen.peek
  taken : s.port64Read &&& 1 ≠ 0 → s.TakenFrom s.port60Read.2

theorem port64Read_ready (s : PS2) : s.port64Read &&& 1 ≠ 0 ↔ s.nextByteIsReady = true := by
  rw [PS2.port64Read]
  cases s.nextByteIsReady <;> cases s.nextByteIsAux <;> decide

theorem port64Read_aux (s : PS2) : s.port64Read &&& 0x20 ≠ 0 ↔ s.nextByteIsAux = true := by
  rw [PS2.port64Read]
  cases s.nextByteIsReady <;> cases s.nextByteIsAux <;> decide

/-- A byte is read from the mouse's queue. -/
theorem port60Read_mouse (haux : s.nextByteIsAux = true) (hne : s.mouseBuffer.length ≠ 0) :
    s.port60Read.1 = s.mouseBuffer.peek ∧
      SameQueues { s with
        mouseBuffer := s.mouseBuffer.shift
        mouseRead := s.mouseRead ++ [s.mouseBuffer.peek] } s.port60Read.2 := by
  have hsome : ¬(s.kbdBuffer.length = 0 ∧ s.mouseBuffer.length = 0) := fun h => hne h.2
  rw [PS2.port60Read]
  dsimp only
  rw [if_neg hsome, if_pos haux]
  refine ⟨rfl, ?_⟩
  refine iteInduction (motive := SameQueues _) (fun _ => ?_) fun _ => ⟨rfl, rfl, rfl, rfl, rfl⟩
  obtain ⟨h1, h2, h3, h4, h5⟩ := sameQueues_raiseIrq { s with
    nextByteIsReady := false
    mouseLine := false
    lastPort60Byte := s.mouseBuffer.peek
    mouseBuffer := s.mouseBuffer.shift
    mouseRead := s.mouseRead ++ [s.mouseBuffer.peek] }
  exact ⟨h1, h2, h3, h4, h5⟩

/-- A byte is read from the keyboard's queue. -/
theorem port60Read_kbd (haux : ¬s.nextByteIsAux = true) (hne : s.kbdBuffer.length ≠ 0) :
    s.port60Read.1 = s.kbdBuffer.peek ∧
      SameQueues { s with kbdBuffer := s.kbdBuffer.shift } s.port60Read.2 := by
  have hsome : ¬(s.kbdBuffer.length = 0 ∧ s.mouseBuffer.length = 0) := fun h => hne h.1
  rw [PS2.port60Read]
  dsimp only
  rw [if_neg hsome, if_neg haux]
  refine ⟨rfl, ?_⟩
  refine iteInduction (motive := SameQueues _) (fun _ => ?_) fun _ => ⟨rfl, rfl, rfl, rfl, rfl⟩
  obtain ⟨h1, h2, h3, h4, h5⟩ := sameQueues_raiseIrq { s with
    nextByteIsReady := false
    kbdLine := false
    lastPort60Byte := s.kbdBuffer.peek
    kbdBuffer := s.kbdBuffer.shift }
  exact ⟨h1, h2, h3, h4, h5⟩

theorem Coherent.seen (h : Coherent s) (hready : s.port64Read &&& 1 ≠ 0) : s.seen.length ≠ 0 := by
  have hsource := h.source ((port64Read_ready s).1 hready)
  rw [PS2.announced] at hsource
  rw [PS2.seen, if_congr (port64Read_aux s) rfl rfl]
  exact hsource

theorem Coherent.announces (h : Coherent s) : Announces s where
  full := (port64Read_ready s).trans h.ready
  source := h.seen
  byte hready := by
    have hne := h.seen hready
    rw [PS2.seen] at hne ⊢
    split
    · next haux =>
      rw [if_pos haux] at hne
      exact (port60Read_mouse ((port64Read_aux s).1 haux) hne).1
    · next haux =>
      rw [if_neg haux] at hne
      exact (port60Read_kbd (fun h => haux ((port64Read_aux s).2 h)) hne).1
  taken hready := by
    have hne := h.seen hready
    rw [PS2.seen] at hne
    rw [PS2.TakenFrom]
    split
    · next haux =>
      rw [if_pos haux] at hne
      obtain ⟨-, hsame⟩ := port60Read_mouse ((port64Read_aux s).1 haux) hne
      exact ⟨hsame.mouseBuffer, hsame.kbdBuffer⟩
    · next haux =>
      rw [if_neg haux] at hne
      obtain ⟨-, hsame⟩ := port60Read_kbd (fun h => haux ((port64Read_aux s).2 h)) hne
      exact ⟨hsame.kbdBuffer, hsame.mouseBuffer⟩

end V86.Ps2
