import V86.Uart.Ports

/-!
# The interrupts of the serial ports

What a UART shows agrees with its queue and its pending interrupts (`UART.Coherent`), and a line is
asserted while a UART on it has an interrupt (`Machine.Coherent`). An access keeps this unless it
ends in the last branch of `CheckInterrupt`, which lowers the line, while the other UART on that
line has an interrupt; a restore, if the queues are empty exactly where they were in the machine
whose state was saved.
-/

namespace V86.Uart

open Bits

variable {u u' : UART} {p : Port} {s : Machine} {com : Fin 4} {a : Access}

/-! ## One UART -/

/-- The interrupts by priority, each with the bit of `ier` that enables it. -/
def priorities : List (Nat × Byte) :=
  [(iirCti, ierRdi), (iirRdi, ierRdi), (iirThri, ierThri), (iirMsi, ierMsi)]

/-- The first interrupt that is pending and enabled. -/
def highest (ints : BitVec 16) (ier : Byte) : Nat :=
  match priorities.find? fun c => interrupts ints ier c.1 c.2 with
  | some c => c.1
  | none => iirNoInt

/-- Received data is announced, and received bytes are returned in order, each once. -/
structure UART.Ready (u : UART) : Prop where
  dataReady : u.lsr &&& lsrDataReady ≠ 0 ↔ u.input ≠ []
  pending : u.input ≠ [] ↔ u.ints.getLsbD iirCti = true ∨ u.ints.getLsbD iirRdi = true
  order : u.received = u.returned ++ u.input

/-- What a UART shows agrees with its queue and its pending interrupts. -/
structure UART.Coherent (u : UART) : Prop extends UART.Ready u where
  iir : u.iir = highest u.ints u.ier

namespace Port

/-- `CheckInterrupt` shows the first interrupt on `iir` and on the line. -/
theorem checkInterrupt_eq (p : Port) :
    p.checkInterrupt =
      ⟨{ p.uart with iir := highest p.uart.ints p.uart.ier },
        highest p.uart.ints p.uart.ier ≠ iirNoInt⟩ := by
  rw [checkInterrupt, highest, priorities, List.find?_cons, List.find?_cons, List.find?_cons,
    List.find?_cons, List.find?_nil]
  dsimp only
  generalize interrupts p.uart.ints p.uart.ier iirCti ierRdi = cti
  generalize interrupts p.uart.ints p.uart.ier iirRdi ierRdi = rdi
  generalize interrupts p.uart.ints p.uart.ier iirThri ierThri = thri
  generalize interrupts p.uart.ints p.uart.ier iirMsi ierMsi = msi
  cases cti with
  | true => rfl
  | false =>
    cases rdi with
    | true => rfl
    | false =>
      cases thri with
      | true => rfl
      | false => cases msi <;> rfl

end Port

theorem lsr_set (x : Byte) : (x ||| lsrDataReady) &&& lsrDataReady ≠ 0 := by
  change (x ||| bit 8 0) &&& bit 8 0 ≠ 0
  rw [Ne, and_bit_eq_zero (by decide), getLsbD_set_self (by decide)]
  exact Bool.false_ne_true.symm

theorem lsr_clear (x : Byte) : (x &&& ~~~lsrDataReady) &&& lsrDataReady = 0 := by
  change (x &&& ~~~bit 8 0) &&& bit 8 0 = 0
  rw [and_bit_eq_zero (by decide), getLsbD_clear_self]

namespace UART.Ready

theorem setIir (h : u.Ready) (iir : Nat) : { u with iir }.Ready :=
  ⟨h.dataReady, h.pending, h.order⟩

theorem check (h : p.uart.Ready) : p.checkInterrupt.uart.Ready := by
  rw [Port.checkInterrupt_eq]
  exact h.setIir _

/-- Interrupts other than those of received data may be thrown. -/
theorem throw (h : u.Ready) {line : Nat} (hcti : line ≠ iirCti) (hrdi : line ≠ iirRdi) :
    { u with ints := u.ints ||| bit 16 line }.Ready where
  dataReady := h.dataReady
  pending := by
    change _ ↔ (u.ints ||| bit 16 line).getLsbD iirCti = true ∨
      (u.ints ||| bit 16 line).getLsbD iirRdi = true
    rw [getLsbD_set_ne hcti, getLsbD_set_ne hrdi]
    exact h.pending
  order := h.order

/-- They may be cleared. -/
theorem clear (h : u.Ready) {line : Nat} (hcti : line ≠ iirCti) (hrdi : line ≠ iirRdi) :
    { u with ints := u.ints &&& ~~~bit 16 line }.Ready where
  dataReady := h.dataReady
  pending := by
    change _ ↔ (u.ints &&& ~~~bit 16 line).getLsbD iirCti = true ∨
      (u.ints &&& ~~~bit 16 line).getLsbD iirRdi = true
    rw [getLsbD_clear_ne hcti, getLsbD_clear_ne hrdi]
    exact h.pending
  order := h.order

/-- A byte is received. -/
theorem receive (h : u.Ready) (data : Byte) {line : Nat} (hline : line = iirCti ∨ line = iirRdi) :
    { u with
      input := u.input ++ [data]
      received := u.received ++ [data]
      lsr := u.lsr ||| lsrDataReady
      ints := u.ints ||| bit 16 line }.Ready where
  dataReady := ⟨fun _ => by simp, fun _ => lsr_set u.lsr⟩
  pending := by
    refine ⟨fun _ => ?_, fun _ => by simp⟩
    rcases hline with rfl | rfl
    · exact .inl (getLsbD_set_self (by decide))
    · exact .inr (getLsbD_set_self (by decide))
  order := by
    change u.received ++ [data] = u.returned ++ (u.input ++ [data])
    rw [h.order, List.append_assoc]

/-- A byte is read, and there are others. -/
theorem shift (h : u.Ready) (htail : u.input.tail ≠ []) :
    { u with input := u.input.tail, returned := u.returned ++ u.input.head?.toList }.Ready := by
  have hinput : u.input ≠ [] := by
    intro hnil
    rw [hnil] at htail
    exact htail rfl
  have horder : u.received = u.returned ++ u.input.head?.toList ++ u.input.tail := by
    rw [List.append_assoc, h.order]
    cases u.input <;> rfl
  exact ⟨⟨fun _ => htail, fun _ => h.dataReady.2 hinput⟩,
    ⟨fun _ => h.pending.1 hinput, fun _ => htail⟩, horder⟩

/-- The last byte is read, or there is none. -/
theorem empty (h : u.Ready) (htail : u.input.tail = []) :
    { u with
      input := u.input.tail
      returned := u.returned ++ u.input.head?.toList
      lsr := u.lsr &&& ~~~lsrDataReady
      ints := u.ints &&& ~~~bit 16 iirCti &&& ~~~bit 16 iirRdi }.Ready where
  dataReady := ⟨fun hready => absurd (lsr_clear u.lsr) hready, fun hne => absurd htail hne⟩
  pending := by
    refine ⟨fun hne => absurd htail hne, ?_⟩
    rintro (hcti | hrdi)
    · change (u.ints &&& ~~~bit 16 iirCti &&& ~~~bit 16 iirRdi).getLsbD iirCti = true at hcti
      rw [getLsbD_clear_ne (by decide), getLsbD_clear_self] at hcti
      cases hcti
    · change (u.ints &&& ~~~bit 16 iirCti &&& ~~~bit 16 iirRdi).getLsbD iirRdi = true at hrdi
      rw [getLsbD_clear_self] at hrdi
      cases hrdi
  order := by
    change u.received = u.returned ++ u.input.head?.toList ++ u.input.tail
    rw [List.append_assoc, h.order]
    cases u.input <;> rfl

end UART.Ready

/-! ## Accesses -/

/-- The interrupt that received data throws. -/
def UART.dataInterrupt (u : UART) : Nat := if u.fifoControl &&& 1 ≠ 0 then iirCti else iirRdi

/-- The pending interrupts after a write to the data port. -/
def UART.written (u : UART) : BitVec 16 :=
  let ints := u.ints ||| bit 16 iirThri
  if u.modemControl &&& mcrLoopback ≠ 0 then ints ||| bit 16 u.dataInterrupt else ints

/-- The modem status after a line of the modem changes. -/
def UART.modemChanged (u : UART) (l : ModemLine) (setBit : Bool) : Byte :=
  let status := if setBit then u.modemStatus ||| bit 8 l.bit else u.modemStatus &&& ~~~bit 8 l.bit
  status ||| (u.modemStatus ^^^ status) >>> 4

/-- The pending and the enabled interrupts that an access checks last, if it checks them. -/
def UART.checks (u : UART) : Access → Option (BitVec 16 × Byte)
  | .received _ => some (u.ints ||| bit 16 u.dataInterrupt, u.ier)
  | .modem l setBit =>
    if u.modemChanged l setBit &&& 0x0F ≠ 0 then some (u.ints ||| bit 16 iirMsi, u.ier) else none
  | .read 0 =>
    if u.lineControl &&& dlab = 0 ∧ u.input.tail = [] then
      some (u.ints &&& ~~~bit 16 iirCti &&& ~~~bit 16 iirRdi, u.ier)
    else none
  | .read 2 => if u.iir = iirThri then some (u.ints &&& ~~~bit 16 iirThri, u.ier) else none
  | .read 6 => some (u.ints &&& ~~~bit 16 iirMsi, u.ier)
  | .write 0 _ | .writeWord _ =>
    if u.lineControl &&& dlab = 0 then some (u.written, u.ier) else none
  | .write 1 outByte =>
    if u.lineControl &&& dlab = 0 then
      some (if u.ier &&& ierThri = 0 ∧ outByte &&& ierThri ≠ 0 then u.ints ||| bit 16 iirThri
        else u.ints, outByte &&& 0xF)
    else none
  | .read _ | .write .. => none

namespace Port

end Port

/-- Whether an access ends in the last branch of `CheckInterrupt`, which lowers the line. -/
def UART.lowers (u : UART) (a : Access) : Bool :=
  match u.checks a with
  | some (ints, ier) => highest ints ier = iirNoInt
  | none => false

/-- Every UART is coherent, and a line is asserted exactly when some UART on it has an interrupt. -/
structure Machine.Coherent (s : Machine) : Prop where
  uarts : ∀ com, (s.uarts com).Coherent
  irq : ∀ com, (s.uarts com).irq = irqOf com
  lines : ∀ com, s.lines (irqOf com) = true ↔
    ∃ com', irqOf com' = irqOf com ∧ (s.uarts com').iir ≠ iirNoInt

/-- The access does not lower the line while the other UART on it has an interrupt; the queues are
empty exactly where they were in the machine, itself coherent, whose state is restored. -/
def Safe (s : Machine) : Action → Prop
  | .access com a =>
    (s.uarts com).lowers a = true → (s.uarts (com + 2)).iir = iirNoInt
  | .restore saved =>
    saved.Coherent ∧ ∀ com, (saved.uarts com).input = [] ↔ (s.uarts com).input = []

/-- What an action is to do: the machine after it is coherent, as is one whose state it restores. -/
def Served (s : Machine) (a : Action) : Prop :=
  (∀ saved, a = .restore saved → saved.Coherent) ∧ (step s a).Coherent

local instance neZeroPorts : NeZero 8 := ⟨by decide⟩

end V86.Uart
